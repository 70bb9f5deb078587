import Hustle.Operators.MeanMerge

/-!
This module contains when a hash aggregate keeps groups apart. The maps of the tasks are keyed by a mix of the hashes
of the group columns, and two tuples with the same mix end in one row of the output, whatever their groups are.
-/

namespace Hustle.Operators

open Accumulate
open Resolver (AggregateKernel)

namespace HashAggregate

/--
Tuples of different groups are in different rows of the output, which have their groups.
-/
def Separates (tuples : List Nat) (key : Nat → List Value) (rows : List AggRow) : Prop :=
  ∀ j ∈ tuples, ∀ k ∈ tuples, key j ≠ key k →
    ∃ m n : Nat, m ≠ n ∧ (rows.map Prod.fst)[m]? = some (key j) ∧ (rows.map Prod.fst)[n]? = some (key k)

variable {hash : Value → BitVec 64} {op : HashAggregate} {heap heap' : Heap} {src : TupleList}
  {key : Nat → List Value} {value : Nat → BitVec 64}

theorem secondPhaseAggregate_isSome (divide : BitVec 64 → BitVec 64 → BitVec 64) (kernel : AggregateKernel)
    (parts : List (List (Nat × (Nat × Nat))))
    : ∃ m, secondPhaseAggregate divide kernel (parts.map (addEntries hash key value kernel ⟨[], [], []⟩)) = some m ∧
        ∀ x ∈ parts.flatten, (m.lookup (groupHash hash (key x.1))).isSome := by
  have hvalues : ∀ x ∈ parts.flatten,
      ((globalValueMap (parts.map (addEntries hash key value kernel ⟨[], [], []⟩))).lookup
        (groupHash hash (key x.1))).isSome := by
    intro x hx
    have htotals := @totals_globalValueMap hash key value kernel parts
    rw [Option.isSome_iff_ne_none, Ne, lookup_eq_none_iff, not_not, htotals.mem_keys]
    exact mem_keys_of_mem (List.mem_map_of_mem (f := valueEntry hash key value) hx)
  cases kernel with
  | sum => exact ⟨_, rfl, hvalues⟩
  | count => exact ⟨_, rfl, hvalues⟩
  | mean =>
    obtain ⟨values, counts, hglobals, hmerged, hkeys⟩ := exists_globalMeanMaps hash key value parts
    obtain ⟨m, hm, hlookup⟩ := secondPhaseAggregate_mean divide hglobals hkeys
    refine ⟨m, hm, ?_⟩
    intro x hx
    have htuples : tuplesOf hash key parts.flatten (groupHash hash (key x.1)) ≠ [] :=
      List.ne_nil_of_mem (List.mem_filter.mpr ⟨hx, by simp⟩)
    obtain ⟨first, -, -, -, hcount, hvalue⟩ := @merged_of_tuples hash key value parts _ htuples
    rw [← (hmerged _).2] at hcount
    rw [← (hmerged _).1] at hvalue
    rw [hlookup _ _ _ hvalue hcount]
    rfl

theorem finish_rows (h : op.Reads heap src key value) (hheap : Keeps heap heap')
    {seen : List (Nat × (Nat × Nat))}
    (hseen : seen.Perm ((List.range src.lengths.length).flatMap (entries src)))
    {tupleMap : TupleMap} (htuples : Picks tupleMap (seen.map (tupleEntry hash key))) {globalMap : HashMap}
    (hlookup : ∀ x ∈ seen, (globalMap.lookup (groupHash hash (key x.1))).isSome)
    : ∃ rows, op.finish heap' globalMap tupleMap = some rows ∧
        (rows.map fun row => groupHash hash row.1) = keys tupleMap ∧
        ∀ row ∈ rows, ∃ k ∈ (List.range src.size).filter src.active, row.1 = key k := by
  have hplace : ∀ e ∈ tupleMap, ∃ k ∈ (List.range src.size).filter src.active,
      e.1 = groupHash hash (key k) ∧ groupAt op.groupByCols heap' e.2.1 e.2.2 = some (key k) :=
    fun e he => active_of_mem_tupleMap h hheap hseen htuples he
  choose! number hnumber hhash hgroup using hplace
  have hfinish : op.finish heap' globalMap tupleMap
      = some (tupleMap.map fun e => (key (number e), (globalMap.lookup e.1).getD 0)) := by
    apply Run.mapM_eq_some
    intro e he
    obtain ⟨x, hx, hentry⟩ := List.mem_map.mp (htuples.mem e he)
    have hkey : groupHash hash (key x.1) = e.1 := by rw [← hentry, tupleEntry]
    obtain ⟨v, hv⟩ := Option.isSome_iff_exists.mp (hlookup x hx)
    rw [hkey] at hv
    rw [hgroup e he, hv]
    rfl
  refine ⟨_, hfinish, ?_, ?_⟩
  . rw [List.map_map]
    apply List.map_congr_left
    intro e he
    exact (hhash e he).symm
  . intro row hrow
    obtain ⟨e, he, rfl⟩ := List.mem_map.mp hrow
    exact ⟨number e, hnumber e he, rfl⟩

theorem aggregateRows_hashes (divide : BitVec 64 → BitVec 64 → BitVec 64) (h : op.Reads heap src key value)
    {totalThreads : Nat} (hthreads : 0 < totalThreads) {steps order : List (Nat × Nat)}
    (hsteps : HashAggregateStrategy.tasks totalThreads src.lengths.length = some steps)
    (horder : order.Perm steps)
    : ∃ rows, op.aggregateRows hash divide heap totalThreads order = some rows ∧
        (rows.map fun row => groupHash hash row.1).Nodup ∧
        (∀ row ∈ rows, ∃ k ∈ (List.range src.size).filter src.active, row.1 = key k) ∧
        ∀ k ∈ (List.range src.size).filter src.active,
          groupHash hash (key k) ∈ rows.map fun row => groupHash hash row.1 := by
  obtain ⟨s, seen, hrun, hs, hseen⟩ := firstPhase_seen h hthreads hsteps horder
  obtain ⟨parts, hperm, hmaps⟩ := hs.maps
  have hseen' := hperm.trans hseen
  have hnumbers := (hseen'.map Prod.fst).trans (.of_eq map_fst_flatMap_entries)
  have htuples := @picks_globalTupleMap hash key value op.kernel parts
  obtain ⟨globalMap, hsecond, hlookup⟩ := @secondPhaseAggregate_isSome hash key value divide op.kernel parts
  obtain ⟨rows, hfinish, hkeys, hgroups⟩ := finish_rows h hs.heap hseen' htuples hlookup
  refine ⟨rows, ?_, ?_, hgroups, ?_⟩
  . rw [aggregateRows, h.numChunks]
    simp only [Option.bind_eq_bind, Option.bind_some]
    rw [hrun, Option.bind_some, hmaps, hsecond, Option.bind_some, hfinish]
  . rw [hkeys]
    exact htuples.nodup
  . intro k hk
    obtain ⟨x, hx, rfl⟩ := List.mem_map.mp (hnumbers.mem_iff.mpr hk)
    rw [hkeys, htuples.mem_keys]
    exact mem_keys_of_mem (List.mem_map_of_mem (f := tupleEntry hash key) hx)

theorem separates_of_apart (divide : BitVec 64 → BitVec 64 → BitVec 64) (h : op.Reads heap src key value)
    {totalThreads : Nat} (hthreads : 0 < totalThreads) {steps order : List (Nat × Nat)}
    (hsteps : HashAggregateStrategy.tasks totalThreads src.lengths.length = some steps)
    (hapart : ∀ j ∈ (List.range src.size).filter src.active, ∀ k ∈ (List.range src.size).filter src.active,
      key j ≠ key k → groupHash hash (key j) ≠ groupHash hash (key k))
    (horder : order.Perm steps)
    : ∃ rows, op.aggregateRows hash divide heap totalThreads order = some rows ∧
        Separates ((List.range src.size).filter src.active) key rows := by
  obtain ⟨rows, hrows, -, hgroups, hhashes⟩ := @aggregateRows_hashes hash op heap src key value divide h _
    hthreads _ _ hsteps horder
  refine ⟨rows, hrows, ?_⟩
  have hfind : ∀ k ∈ (List.range src.size).filter src.active,
      ∃ n : Nat, (rows.map Prod.fst)[n]? = some (key k) := by
    intro k hk
    obtain ⟨row, hrow, hhash⟩ := List.mem_map.mp (hhashes k hk)
    obtain ⟨j, hj, hrowj⟩ := hgroups row hrow
    have hkey : row.1 = key k := by
      by_contra hne
      rw [hrowj] at hne hhash
      exact hapart j hj k hk hne hhash
    rw [← hkey]
    exact List.mem_iff_getElem?.mp (List.mem_map_of_mem hrow)
  intro j hj k hk hne
  obtain ⟨m, hm⟩ := hfind j hj
  obtain ⟨n, hn⟩ := hfind k hk
  refine ⟨m, n, ?_, hm, hn⟩
  rintro rfl
  exact hne (Option.some.inj (hm.symm.trans hn))

/--
In every order of the steps of the tasks, active tuples of different groups are in different rows of the output, if and
only if the mixes of different groups of active tuples are different.
-/
theorem separates_iff (hash : Value → BitVec 64) (divide : BitVec 64 → BitVec 64 → BitVec 64)
    (h : op.Reads heap src key value) {totalThreads : Nat} (hthreads : 0 < totalThreads) {steps : List (Nat × Nat)}
    (hsteps : HashAggregateStrategy.tasks totalThreads src.lengths.length = some steps)
    : (∀ order, order.Perm steps → ∃ rows, op.aggregateRows hash divide heap totalThreads order = some rows ∧
          Separates ((List.range src.size).filter src.active) key rows) ↔
        ∀ j ∈ (List.range src.size).filter src.active, ∀ k ∈ (List.range src.size).filter src.active,
          key j ≠ key k → groupHash hash (key j) ≠ groupHash hash (key k) := by
  constructor
  . intro hall j hj k hk hne heq
    obtain ⟨rows, hrows, hseparates⟩ := hall steps (.refl _)
    obtain ⟨rows', hrows', hnodup, -, -⟩ := @aggregateRows_hashes hash op heap src key value divide h _ hthreads _ _
      hsteps (.refl _)
    obtain rfl := Option.some.inj (hrows.symm.trans hrows')
    obtain ⟨m, n, hmn, hm, hn⟩ := hseparates j hj k hk hne
    -- both rows have the same hash
    have hhash : ∀ (i : Nat) (group : List Value), (rows.map Prod.fst)[i]? = some group →
        (rows.map fun row => groupHash hash row.1)[i]? = some (groupHash hash group) := by
      intro i group hi
      rw [List.getElem?_map] at hi ⊢
      obtain ⟨row, hrow, rfl⟩ := Option.map_eq_some_iff.mp hi
      rw [hrow]
      rfl
    have hm' := hhash m _ hm
    have hn' := hhash n _ hn
    rw [heq, ← hn'] at hm'
    have hlt := (List.getElem?_eq_some_iff.mp hn').1
    exact hmn ((List.getElem?_inj hlt hnodup).mp hm'.symm).symm
  . intro hapart order horder
    exact separates_of_apart divide h hthreads hsteps hapart horder

/--
A count of the rows (0, 0) and (1, b) of a table, with both columns in the GROUP BY clause.
-/
def countPairs : HashAggregate where
  kernel := .count
  groupByCols := [[0], [1]]
  source := .column [0]
  filter := none

def pairHeap (b : BitVec 64) : Heap :=
  [.int64 [0, 1], .int64 [0, b]]

def pairTuples : TupleList where
  lengths := [2]
  tuple := fun row _ => row
  active := fun _ => true

def pairKey (b : BitVec 64) (k : Nat) : List Value :=
  if k = 0 then [.int64 0, .int64 0] else [.int64 1, .int64 b]

theorem countPairs_reads (b : BitVec 64) : countPairs.Reads (pairHeap b) pairTuples (pairKey b) fun _ => 1 where
  numChunks := rfl
  group := by
    intro heap' hheap c hc i hi
    have h₀ : heap'[0]? = some (.int64 [0, 1]) := hheap 0 Nat.zero_lt_two
    have h₁ : heap'[1]? = some (.int64 [0, b]) := hheap 1 Nat.one_lt_two
    have hc : c = 0 := Nat.lt_one_iff.mp hc
    subst hc
    have hi : i < 2 := hi
    interval_cases i
    . simp [groupAt, countPairs, h₀, h₁, Values.get?, pairKey, TupleList.offset]
    . simp [groupAt, countPairs, h₀, h₁, Values.get?, pairKey, TupleList.offset]
  active := by
    intro c hc i hi
    rfl
  scan := by
    intro heap' hheap c hc
    have h₀ : heap'[0]? = some (.int64 [0, 1]) := hheap 0 Nat.zero_lt_two
    have hc : c = 0 := Nat.lt_one_iff.mp hc
    subst hc
    exact ⟨0, heap', .int64 [0, 1], rfl, hheap, h₀, rfl, fun i hi => rfl⟩

theorem separates_iff_pairs
    : countPairs.Reads (pairHeap 0) pairTuples (pairKey 0) (fun _ => 1) ∧
        ∀ order, order.Perm [(0, 0)] → ∃ rows,
          countPairs.aggregateRows integerHash (fun value _ => value) (pairHeap 0) 1 order = some rows ∧
            Separates ((List.range pairTuples.size).filter pairTuples.active) (pairKey 0) rows := by
  refine ⟨countPairs_reads 0, ?_⟩
  exact (separates_iff integerHash (fun value _ => value) (countPairs_reads 0) (by decide) (by decide)).mpr (by decide)

/--
The groups (0, 0) and (1, -67) have the same mix. The output has one row, which counts both tuples.
-/
theorem not_separates_pairs
    : countPairs.Reads (pairHeap (-67)) pairTuples (pairKey (-67)) (fun _ => 1) ∧
        ¬ ∀ order, order.Perm [(0, 0)] → ∃ rows,
          countPairs.aggregateRows integerHash (fun value _ => value) (pairHeap (-67)) 1 order = some rows ∧
            Separates ((List.range pairTuples.size).filter pairTuples.active) (pairKey (-67)) rows := by
  refine ⟨countPairs_reads (-67), ?_⟩
  intro hall
  obtain ⟨rows, hrows, hseparates⟩ := hall [(0, 0)] (.refl _)
  have houtput : countPairs.aggregateRows integerHash (fun value _ => value) (pairHeap (-67)) 1 [(0, 0)]
      = some [([.int64 0, .int64 0], 2)] := by decide
  obtain rfl := Option.some.inj (houtput.symm.trans hrows)
  obtain ⟨m, n, hne, hm, hn⟩ := hseparates 0 (by decide) 1 (by decide) (by decide)
  have hm := (List.getElem?_eq_some_iff.mp hm).1
  have hn := (List.getElem?_eq_some_iff.mp hn).1
  simp only [List.length_map, List.length_singleton] at hm hn
  omega

end HashAggregate

end Hustle.Operators
