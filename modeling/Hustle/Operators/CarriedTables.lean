import Hustle.Operators.HashJoin
import Hustle.Operators.HashSchedule
import Hustle.Operators.MultiwayJoin

/-!
This module contains plans of `SelectBuildHash`, `HashJoin` and `MultiwayJoin`. Every join makes new lazy tables, which
carry the hash tables of the old ones, although their rows and filters are other ones.
-/

namespace Hustle.Operators

open Resolver (CompareOperator)
open Storage (DBTable Row)

/--
A `SelectBuildHash` of a plan with what it reads, and an order of its tasks.
-/
structure HashBuild (db : Tables) where
  op : SelectBuildHash
  table : Nat
  compare : List (List UInt8) → List UInt8 → CompareOperator → BooleanArray
  searchMetadata : Nat → String → BitVec 64 → CompareOperator → Bool
  iterate : HashTable → HashTable
  hardwareConcurrency : Nat
  tasks : List SelectBuildHash.BlockTask
  contents : List (List Row)
  column : Nat
  compare_pointwise : Select.Pointwise compare
  iterate_perm : ∀ t, (iterate t).entries.Perm t.entries
  hashable : op.Hashable compare searchMetadata contents column
  isSchedule : SelectBuildHash.IsSchedule
    (SelectBuildHash.batches hardwareConcurrency op.table.blocks.entries.length) tasks
  joinCol_eq : op.joinCol = db.column table op.joinColumn

namespace MultiwayJoin

/-! What `Execute` prepares. -/

def lefts (result : OperatorResult) (preds : List JoinPredicate) : OperatorResult :=
  preds.flatMap fun p => result.filter fun t => t.table = p.leftTable

def rights (result : OperatorResult) (preds : List JoinPredicate) : OperatorResult :=
  preds.flatMap fun p => result.filter fun t => t.table ≠ p.leftTable ∧ t.table = p.rightTable

/--
The join with a number. The columns are those of the predicate that has the number.
-/
def preparedJoin (result : OperatorResult) (preds : List JoinPredicate) (joinId : Nat) : Option JoinPredicate := do
  let left ← (lefts result preds)[joinId]?
  let right ← (rights result preds)[joinId]?
  let p ← preds[joinId]?
  return ⟨left.table, p.leftCol, right.table, p.rightCol⟩

def preparedJoins (result : OperatorResult) (preds : List JoinPredicate) : Option (List JoinPredicate) :=
  (List.range (lefts result preds).length).mapM (preparedJoin result preds)

end MultiwayJoin

/--
The operators of a plan. Joins read the results of earlier operators.
-/
inductive PlanOperator (db : Tables) where
  | selectBuildHash (build : HashBuild db)
  | hashJoin (left right : Nat) (p : JoinPredicate)
  | multiwayJoin (inputs : List Nat) (preds : List JoinPredicate)

/--
The results so far, and the lazy tables that were made with hash tables, with the columns that were hashed.
-/
structure PlanState where
  results : List OperatorResult
  hashed : List (LazyTable × String)

namespace PlanState

/--
The results of the operators in front of the first `SelectBuildHash` or join.
-/
def start (results : List OperatorResult) : PlanState :=
  ⟨results, []⟩

def step {db : Tables} (size : Nat → Nat) (s : PlanState) : PlanOperator db → Option PlanState
  | .selectBuildHash build => do
    let state ← build.op.execute build.compare build.searchMetadata build.iterate build.tasks
    let filter ← build.op.outputFilter state
    let t := ⟨build.table, filter, none, none, some state.hashTable⟩
    return ⟨s.results ++ [[t]], (t, build.op.joinColumn) :: s.hashed⟩
  | .hashJoin left right p => do
    let leftResult ← s.results[left]?
    let rightResult ← s.results[right]?
    let out ← HashJoin.execute db size leftResult rightResult p
    return { s with results := s.results ++ [out] }
  | .multiwayJoin inputs preds => do
    let prevResultVec ← take s.results inputs
    let joins ← MultiwayJoin.preparedJoins prevResultVec.flatten preds
    let out ← MultiwayJoin.execute db size prevResultVec.flatten joins
    return { s with results := s.results ++ [out] }

end PlanState

/-! What is asked for. -/

/--
The hash table that the lazy table carries is the one that `BuildHashTable` would build.
-/
def LazyTable.CarriesBuilt (db : Tables) (t : LazyTable) (name : String) : Prop :=
  ∀ carried joinCol, t.hashTable = some carried → t.materializeColumn db name = some joinCol →
    ∃ built, HashTable.build joinCol t.filter = some built ∧ SelectBuildHash.SameRows carried built

/--
So does the right lazy table of a join.
-/
def OperatorResult.RightCarriesBuilt (db : Tables) (result : OperatorResult) (p : JoinPredicate) : Prop :=
  ∀ t, result.getTable p.rightTable = some t → t.CarriesBuilt db p.rightCol

/--
Every join of the operator that takes a carried hash table takes the one that it would build.
-/
def PlanState.TakesBuilt {db : Tables} (size : Nat → Nat) (s : PlanState) : PlanOperator db → Prop
  | .selectBuildHash _ => True
  | .hashJoin _ right p => ∀ rightResult, s.results[right]? = some rightResult → rightResult.RightCarriesBuilt db p
  | .multiwayJoin inputs preds => ∀ prevResultVec joins, take s.results inputs = some prevResultVec →
      MultiwayJoin.preparedJoins prevResultVec.flatten preds = some joins →
      Run.Throughout (MultiwayJoin.hashJoin db size) (fun _ => True) (fun s p => s.prevResult.RightCarriesBuilt db p)
        ⟨prevResultVec.flatten, []⟩ joins

/-! When it holds. -/

def LetsAllPass (filter : Option (Chunked Bool)) : Prop :=
  ∀ f, filter = some f → ∀ b ∈ f.flatten, b = true

/--
No hash table, or the lazy table as it was made, joined on the column that was hashed.
-/
def PlanState.Unchanged (hashed : List (LazyTable × String)) (result : OperatorResult) (p : JoinPredicate) : Prop :=
  ∀ t, result.getTable p.rightTable = some t → t.hashTable = none ∨ (t, p.rightCol) ∈ hashed

/--
The same for all joins of a `MultiwayJoin`. The right table is not in an earlier join, and from the second join on its
filter makes no difference.
-/
def PlanState.AllUnchanged (hashed : List (LazyTable × String)) (result : OperatorResult)
    : List Nat → List JoinPredicate → Prop
  | _, [] => True
  | joined, p :: joins =>
    (∀ t, result.getTable p.rightTable = some t → t.hashTable = none ∨
      (t, p.rightCol) ∈ hashed ∧ p.rightTable ∉ joined ∧ (joined = [] ∨ LetsAllPass t.filter)) ∧
    AllUnchanged hashed result (p.leftTable :: p.rightTable :: joined) joins

def PlanState.JoinsUnchanged {db : Tables} (s : PlanState) : PlanOperator db → Prop
  | .selectBuildHash _ => True
  | .hashJoin _ right p => ∀ rightResult, s.results[right]? = some rightResult → Unchanged s.hashed rightResult p
  | .multiwayJoin inputs preds => ∀ prevResultVec joins, take s.results inputs = some prevResultVec →
      MultiwayJoin.preparedJoins prevResultVec.flatten preds = some joins →
      AllUnchanged s.hashed prevResultVec.flatten [] joins

/-! Filters that all rows pass. -/

theorem selectBits_of_all {α : Type} {vs out : List α} {bits : List Bool} (h : selectBits vs bits = some out)
    (hall : ∀ b ∈ bits, b = true)
    : out = vs := by
  induction vs generalizing bits out with
  | nil =>
    cases h
    rfl
  | cons v vs ih =>
    cases bits with
    | nil => cases h
    | cons b bits =>
      obtain ⟨rest, hrest, h⟩ := Option.bind_eq_some_iff.mp h
      cases hall b List.mem_cons_self
      cases h
      rw [ih hrest fun b hb => hall b (List.mem_cons_of_mem _ hb)]
      rfl

theorem selectChunks_of_all {α : Type} {col out : Chunked α} {f : Chunked Bool} (h : selectChunks col f = some out)
    (hall : ∀ b ∈ f.flatten, b = true)
    : out = col := by
  induction col generalizing f out with
  | nil =>
    cases h
    rfl
  | cons chunk col ih =>
    cases f with
    | nil => cases h
    | cons bits f =>
      obtain ⟨sel, hsel, h⟩ := Option.bind_eq_some_iff.mp h
      obtain ⟨rest, hrest, h⟩ := Option.bind_eq_some_iff.mp h
      cases h
      rw [List.flatten_cons] at hall
      rw [selectBits_of_all hsel fun b hb => hall b (List.mem_append_left _ hb),
        ih hrest fun b hb => hall b (List.mem_append_right _ hb)]

theorem LetsAllPass.build_none {col : Chunked (BitVec 64)} {filter : Option (Chunked Bool)} {built : HashTable}
    (hall : LetsAllPass filter) (h : HashTable.build col filter = some built)
    : HashTable.build col none = some built := by
  cases filter with
  | none => exact h
  | some f =>
    unfold HashTable.build at h ⊢
    split at h
    . cases h
    . next hne =>
      obtain ⟨rows, hrows, h⟩ := Option.bind_eq_some_iff.mp h
      rw [if_neg hne, ← h, selectChunks_of_all hrows (hall f rfl)]
      rfl

/-! Lazy tables with hash tables of their own rows. -/

variable {db : Tables} {size : Nat → Nat} {t : LazyTable} {name : String}

namespace LazyTable

/--
The hash table has the rows of the table that pass the filter.
-/
structure Hashed (db : Tables) (t : LazyTable) (name : String) : Prop where
  indices : t.indices = none
  sameRows : ∃ col carried built, db.column t.table name = some col ∧ t.hashTable = some carried ∧
    HashTable.build col t.filter = some built ∧ SelectBuildHash.SameRows carried built

theorem Hashed.carriesBuilt (h : t.Hashed db name) : t.CarriesBuilt db name := by
  intro carried joinCol hcarried hjoinCol
  obtain ⟨col, carried', built, hcol, hcarried', hbuilt, hsame⟩ := h.sameRows
  rw [hcarried', Option.some.injEq] at hcarried
  rw [materializeColumn, hcol, h.indices] at hjoinCol
  cases hjoinCol
  rw [← hcarried]
  exact ⟨built, hbuilt, hsame⟩

theorem Hashed.dropFilter (h : t.Hashed db name) (hall : LetsAllPass t.filter)
    : ({ t with filter := none } : LazyTable).Hashed db name where
  indices := h.indices
  sameRows := by
    obtain ⟨col, carried, built, hcol, hcarried, hbuilt, hsame⟩ := h.sameRows
    exact ⟨col, carried, built, hcol, hcarried, hall.build_none hbuilt, hsame⟩

theorem carriesBuilt_of_none (h : t.hashTable = none) : t.CarriesBuilt db name := by
  intro carried joinCol hcarried
  rw [h] at hcarried
  cases hcarried

end LazyTable

/--
The lazy table that a `SelectBuildHash` makes.
-/
theorem HashBuild.hashed (build : HashBuild db) {state : SelectBuildHash.State} {filter : Option (Chunked Bool)}
    (hstate : build.op.execute build.compare build.searchMetadata build.iterate build.tasks = some state)
    (hfilter : build.op.outputFilter state = some filter)
    : LazyTable.Hashed db ⟨build.table, filter, none, none, some state.hashTable⟩ build.op.joinColumn where
  indices := rfl
  sameRows := by
    obtain ⟨state', hstate', hfilter', hstores⟩ := SelectBuildHash.execute_stores build.compare_pointwise
      build.iterate_perm build.hashable build.isSchedule
    rw [hstate, Option.some.injEq] at hstate'
    rw [← hstate', hfilter, Option.some.injEq] at hfilter'
    obtain ⟨built, hbuilt, hbuiltStores⟩ := build.hashable.build_stores
    rw [← hstate'] at hstores
    refine ⟨SelectBuildHash.columnOf build.contents build.column, state.hashTable, built, ?_, rfl, ?_,
      hstores.sameRows hbuiltStores⟩
    . rw [← build.joinCol_eq, build.hashable.joinCol_eq]
    . rw [hfilter']
      exact hbuilt

/-! One join of a `MultiwayJoin`. -/

namespace MultiwayJoin

theorem propagate_table {finished li : List Nat} {t t' : LazyTable} (h : propagate finished li t = some t')
    : t'.table = t.table ∧ t'.hashTable = t.hashTable ∧ (t.table ∉ finished → t' = { t with filter := none }) := by
  unfold propagate at h
  split at h
  . next hmem =>
    obtain ⟨indices, -, h⟩ := Option.bind_eq_some_iff.mp h
    obtain ⟨newIndices, -, h⟩ := Option.bind_eq_some_iff.mp h
    cases h
    exact ⟨rfl, rfl, fun hnot => absurd hmem hnot⟩
  . cases h
    exact ⟨rfl, rfl, fun _ => rfl⟩

theorem getTable_filter {result : OperatorResult} {table : Nat} {q : LazyTable → Bool}
    (h : ∀ t ∈ result, t.table = table → q t = true)
    : OperatorResult.getTable (result.filter q) table = result.getTable table := by
  induction result with
  | nil => rfl
  | cons t result ih =>
    have ih := ih fun t' ht' => h t' (List.mem_cons_of_mem _ ht')
    rw [List.filter_cons, OperatorResult.getTable_cons]
    by_cases htable : t.table = table
    . rw [if_pos (h t List.mem_cons_self htable), OperatorResult.getTable_cons, if_pos htable, if_pos htable]
    . rw [if_neg htable]
      split
      . rw [OperatorResult.getTable_cons, if_neg htable, ih]
      . exact ih

theorem backPropogateResult_eq_some {s : State} {left right : LazyTable} {li ri : List Nat} {result : OperatorResult}
    (h : backPropogateResult s left right li ri = some result)
    : ∃ leftIndices leftIndexChunks rightIndices others,
        (s.prevResult.filter fun t => t.table ≠ left.table ∧ t.table ≠ right.table).mapM (propagate s.finished li)
          = some others ∧
        result = ⟨left.table, none, some leftIndices, leftIndexChunks, left.hashTable⟩ ::
          ⟨right.table, none, some rightIndices, none, right.hashTable⟩ :: others := by
  obtain ⟨leftIndices, -, h⟩ := Option.bind_eq_some_iff.mp h
  dsimp only at h
  split at h
  . obtain ⟨leftIndexChunks, -, h⟩ := Option.bind_eq_some_iff.mp h
    obtain ⟨rightIndices, -, h⟩ := Option.bind_eq_some_iff.mp h
    obtain ⟨others, hothers, h⟩ := Option.bind_eq_some_iff.mp h
    cases h
    exact ⟨_, _, _, others, hothers, rfl⟩
  . obtain ⟨leftIndexChunks, -, h⟩ := Option.bind_eq_some_iff.mp h
    obtain ⟨rightIndices, -, h⟩ := Option.bind_eq_some_iff.mp h
    obtain ⟨others, hothers, h⟩ := Option.bind_eq_some_iff.mp h
    cases h
    exact ⟨_, _, _, others, hothers, rfl⟩

/--
The hash tables stay, and a table that waits changes in its filter only.
-/
theorem hashJoin_getTable {s s' : State} {p : JoinPredicate} (h : hashJoin db size s p = some s')
    : s'.finished = p.leftTable :: p.rightTable :: s.finished ∧
        ∀ table t', s'.prevResult.getTable table = some t' →
          ∃ t, s.prevResult.getTable table = some t ∧ t'.hashTable = t.hashTable ∧
            (table ∉ s'.finished → t' = { t with filter := none }) := by
  obtain ⟨left, hleft, h⟩ := Option.bind_eq_some_iff.mp h
  obtain ⟨right, hright, h⟩ := Option.bind_eq_some_iff.mp h
  obtain ⟨pairs, -, h⟩ := Option.bind_eq_some_iff.mp h
  obtain ⟨prevResult, hprevResult, h⟩ := Option.bind_eq_some_iff.mp h
  cases h
  refine ⟨rfl, ?_⟩
  intro table t' hget
  obtain ⟨leftIndices, leftIndexChunks, rightIndices, others, hothers, rfl⟩ := backPropogateResult_eq_some hprevResult
  have hlt := OperatorResult.table_of_getTable hleft
  have hrt := OperatorResult.table_of_getTable hright
  dsimp only at hget ⊢
  rw [OperatorResult.getTable_cons, OperatorResult.getTable_cons] at hget
  split at hget
  . next heq =>
    cases hget
    dsimp only at heq
    rw [← heq, hlt]
    exact ⟨left, hleft, rfl, fun hnot => absurd List.mem_cons_self hnot⟩
  . next hneL =>
    split at hget
    . next heq =>
      cases hget
      dsimp only at heq
      rw [← heq, hrt]
      exact ⟨right, hright, rfl, fun hnot => absurd (List.mem_cons_of_mem _ List.mem_cons_self) hnot⟩
    . next hneR =>
      dsimp only at hneL hneR
      have hmap := HashJoin.getTable_mapM (fun t t' h => (propagate_table h).1) hothers table
      rw [getTable_filter] at hmap
      . cases hold : s.prevResult.getTable table with
        | none =>
          rw [hold] at hmap
          rw [hmap] at hget
          cases hget
        | some t =>
          rw [hold] at hmap
          obtain ⟨t'', ht'', hout⟩ := hmap
          rw [hout, Option.some.injEq] at hget
          rw [← hget]
          obtain ⟨-, hhash, hkeep⟩ := propagate_table ht''
          refine ⟨t, rfl, hhash, ?_⟩
          intro hnot
          apply hkeep
          rw [OperatorResult.table_of_getTable hold]
          exact hnot
      . intro t _ htable
        rw [htable]
        simpa using ⟨Ne.symm hneL, Ne.symm hneR⟩

/--
What is left of the lazy tables of the input after some joins.
-/
def Kept (result : OperatorResult) (s : State) : Prop :=
  ∀ table t', s.prevResult.getTable table = some t' →
    ∃ t, result.getTable table = some t ∧ t'.hashTable = t.hashTable ∧
      (table ∉ s.finished → t' = t ∨ s.finished ≠ [] ∧ t' = { t with filter := none })

theorem kept_start (result : OperatorResult) : Kept result ⟨result, []⟩ := by
  intro table t' hget
  exact ⟨t', hget, rfl, fun _ => .inl rfl⟩

theorem Kept.hashJoin {result : OperatorResult} {s s' : State} {p : JoinPredicate} (hkept : Kept result s)
    (h : hashJoin db size s p = some s')
    : Kept result s' := by
  obtain ⟨hfinished, hget⟩ := hashJoin_getTable h
  intro table t' ht'
  obtain ⟨t₁, ht₁, hhash₁, hkeep₁⟩ := hget table t' ht'
  obtain ⟨t, ht, hhash, hkeep⟩ := hkept table t₁ ht₁
  refine ⟨t, ht, hhash₁.trans hhash, ?_⟩
  intro hnot
  rw [hkeep₁ hnot]
  rw [hfinished] at hnot ⊢
  right
  refine ⟨List.cons_ne_nil _ _, ?_⟩
  obtain rfl | ⟨-, rfl⟩ := hkeep fun hmem => hnot (List.mem_cons_of_mem _ (List.mem_cons_of_mem _ hmem))
  . rfl
  . rfl

end MultiwayJoin

/-! Runs. -/

namespace PlanState

/--
The lazy tables that were made with hash tables have the hash tables of their rows.
-/
def Inv (db : Tables) (s : PlanState) : Prop :=
  ∀ x ∈ s.hashed, x.1.Hashed db x.2

theorem step_selectBuildHash {s s' : PlanState} {build : HashBuild db}
    (h : s.step size (.selectBuildHash build) = some s')
    : ∃ t, t.table = build.table ∧ t.Hashed db build.op.joinColumn ∧
        s' = ⟨s.results ++ [[t]], (t, build.op.joinColumn) :: s.hashed⟩ := by
  obtain ⟨state, hstate, h⟩ := Option.bind_eq_some_iff.mp h
  obtain ⟨filter, hfilter, h⟩ := Option.bind_eq_some_iff.mp h
  cases h
  exact ⟨_, rfl, build.hashed hstate hfilter, rfl⟩

theorem Inv.step {s s' : PlanState} {operator : PlanOperator db} (hinv : s.Inv db)
    (h : s.step size operator = some s')
    : s'.Inv db := by
  cases operator with
  | selectBuildHash build =>
    obtain ⟨t, -, ht, rfl⟩ := step_selectBuildHash h
    intro x hx
    rcases List.mem_cons.mp hx with rfl | hx
    . exact ht
    . exact hinv x hx
  | hashJoin left right p =>
    obtain ⟨leftResult, -, h⟩ := Option.bind_eq_some_iff.mp h
    obtain ⟨rightResult, -, h⟩ := Option.bind_eq_some_iff.mp h
    obtain ⟨out, -, h⟩ := Option.bind_eq_some_iff.mp h
    cases h
    exact hinv
  | multiwayJoin inputs preds =>
    obtain ⟨prevResultVec, -, h⟩ := Option.bind_eq_some_iff.mp h
    obtain ⟨joins, -, h⟩ := Option.bind_eq_some_iff.mp h
    obtain ⟨out, -, h⟩ := Option.bind_eq_some_iff.mp h
    cases h
    exact hinv

theorem Unchanged.rightCarriesBuilt {s : PlanState} {result : OperatorResult} {p : JoinPredicate} (hinv : s.Inv db)
    (h : Unchanged s.hashed result p)
    : result.RightCarriesBuilt db p := by
  intro t ht
  rcases h t ht with hnone | hmem
  . exact LazyTable.carriesBuilt_of_none hnone
  . exact (hinv _ hmem).carriesBuilt

theorem AllUnchanged.throughout {s : PlanState} {result : OperatorResult} (hinv : s.Inv db)
    {joins : List JoinPredicate} {state : MultiwayJoin.State} (hkept : MultiwayJoin.Kept result state)
    (h : AllUnchanged s.hashed result state.finished joins)
    : Run.Throughout (MultiwayJoin.hashJoin db size) (fun _ => True) (fun s p => s.prevResult.RightCarriesBuilt db p)
        state joins := by
  induction joins generalizing state with
  | nil => trivial
  | cons p joins ih =>
    obtain ⟨hright, hrest⟩ := h
    refine ⟨trivial, ?_, ?_⟩
    . intro t' ht'
      obtain ⟨t, ht, hhash, hkeep⟩ := hkept p.rightTable t' ht'
      rcases hright t ht with hnone | ⟨hmem, hnot, hpass⟩
      . exact LazyTable.carriesBuilt_of_none (hhash.trans hnone)
      have hhashed : t.Hashed db p.rightCol := hinv _ hmem
      obtain rfl | ⟨hlater, rfl⟩ := hkeep hnot
      . exact hhashed.carriesBuilt
      . rcases hpass with hfirst | hall
        . exact absurd hfirst hlater
        . exact (hhashed.dropFilter hall).carriesBuilt
    . intro state' hstate'
      apply ih (hkept.hashJoin hstate')
      rw [(MultiwayJoin.hashJoin_getTable hstate').1]
      exact hrest

theorem JoinsUnchanged.takesBuilt {s : PlanState} {operator : PlanOperator db} (hinv : s.Inv db)
    (h : s.JoinsUnchanged operator)
    : s.TakesBuilt size operator := by
  cases operator with
  | selectBuildHash build => trivial
  | hashJoin left right p =>
    intro rightResult hright
    exact (h rightResult hright).rightCarriesBuilt hinv
  | multiwayJoin inputs preds =>
    intro prevResultVec joins hinputs hjoins
    exact AllUnchanged.throughout hinv (MultiwayJoin.kept_start _) (h prevResultVec joins hinputs hjoins)

/--
In every plan whose joins find the lazy tables with hash tables as they were made, on the columns that were hashed, every
hash table that is taken is the one that would be built.
-/
theorem run_takesBuilt (db : Tables) (size : Nat → Nat) (results : List OperatorResult)
    (operators : List (PlanOperator db))
    (h : Run.Meets (step size) JoinsUnchanged (start results) operators)
    : Run.Throughout (step size) (fun _ => True) (TakesBuilt size) (start results) operators := by
  apply @Run.throughout_of_meets _ _ _ (Inv db) _ _ _ (fun _ _ => trivial) _ _ _ _ _ h
  . intro s operator hinv hok
    exact hok.takesBuilt hinv
  . intro s operator s' hinv _ hs'
    exact hinv.step hs'
  . intro x hx
    cases hx

end PlanState

/-!
Three tables with a column `n`. The table `1` is hashed, joined with the table `0`, and what is left of it with the table
`2`.
-/

def stockColumn (t : Nat) (name : String) : Option (Chunked (BitVec 64)) :=
  if name = "n" then [[[9]], [[3, 9, 5], [9, 3]], [[9]]][t]? else none

theorem stockColumn_aligned (t : Nat) (name : String) (col : Chunked (BitVec 64)) (h : stockColumn t name = some col)
    : col.map List.length = [[1], [3, 2], [1]].getD t [] := by
  unfold stockColumn at h
  split at h
  . obtain ⟨ht, hcol⟩ := List.getElem?_eq_some_iff.mp h
    have : t = 0 ∨ t = 1 ∨ t = 2 := by
      simp at ht
      omega
    rcases this with rfl | rfl | rfl
    . rw [← hcol]; rfl
    . rw [← hcol]; rfl
    . rw [← hcol]; rfl
  . cases h

def stockDb : Tables where
  chunkLengths t := [[1], [3, 2], [1]].getD t []
  column := stockColumn
  column_aligned := stockColumn_aligned

theorem stockTable_isSome
    : (DBTable.ofBatches (SelectBuildHash.stockBlocks.map (Storage.batchOf Select.stockSchema)) Storage.blockSize
        false).isSome := by
  obtain ⟨t, ht, -⟩ := DBTable.ofBatches_repr Select.stockSchema false
    (show SelectBuildHash.stockBlocks ≠ [] by decide) (by decide)
  rw [ht]
  rfl

def stockTable : DBTable :=
  (DBTable.ofBatches (SelectBuildHash.stockBlocks.map (Storage.batchOf Select.stockSchema)) Storage.blockSize
    false).get stockTable_isSome

theorem stockTable_repr
    : stockTable.Repr SelectBuildHash.stockBlocks ∧ stockTable.schema = Select.stockSchema ∧
        stockTable.numRows = 5 := by
  obtain ⟨t, ht, hrepr, hschema, hnum⟩ := DBTable.ofBatches_repr Select.stockSchema false
    (show SelectBuildHash.stockBlocks ≠ [] by decide) (by decide)
  have heq : stockTable = t := by simp only [stockTable, ht, Option.get_some]
  rw [heq]
  exact ⟨hrepr, hschema, hnum⟩

def stockHash : SelectBuildHash :=
  ⟨stockTable, ["n", "s"], none, "n"⟩

theorem stockHash_hashable
    : stockHash.Hashable Select.compareEach (fun _ _ _ _ => true) SelectBuildHash.stockBlocks 0 := by
  obtain ⟨hrepr, hschema, hnum⟩ := stockTable_repr
  refine ⟨SelectBuildHash.stockBlocks_numbered hrepr hschema none, ?_, ?_⟩
  . rw [stockHash, hnum]
    decide
  . intro root hroot
    cases hroot

def stockBuild : HashBuild stockDb where
  op := stockHash
  table := 1
  compare := Select.compareEach
  searchMetadata := fun _ _ _ _ => true
  iterate := fun t => t
  hardwareConcurrency := 2
  tasks := [.hash 1, .hash 0, .merge 1, .merge 0]
  contents := SelectBuildHash.stockBlocks
  column := 0
  compare_pointwise := Select.compareEach_pointwise
  iterate_perm := fun _ => List.Perm.refl _
  hashable := stockHash_hashable
  isSchedule := by
    have hblocks : stockHash.table.blocks.entries.length = 2 := stockTable_repr.1.numBlocks_eq
    rw [hblocks]
    exact ⟨by decide, by decide⟩
  joinCol_eq := by
    rw [stockHash_hashable.joinCol_eq]
    decide

def stockInputs : List OperatorResult :=
  [[⟨0, none, none, none, none⟩], [⟨2, none, none, none, none⟩]]

def stockPlan : List (PlanOperator stockDb) :=
  [.selectBuildHash stockBuild, .hashJoin 0 2 ⟨0, "n", 1, "n"⟩]

namespace PlanState

theorem run_takesBuilt_stockPlan
    : (stockPlan.foldlM (step fun _ => 1) (start stockInputs)).isSome ∧
        Run.Throughout (step fun _ => 1) (fun _ => True) (TakesBuilt fun _ => 1) (start stockInputs) stockPlan := by
  refine ⟨by decide +kernel, run_takesBuilt stockDb (fun _ => 1) stockInputs stockPlan ⟨trivial, ?_⟩⟩
  intro s hs
  obtain ⟨t, -, -, rfl⟩ := step_selectBuildHash hs
  refine ⟨?_, fun _ _ => trivial⟩
  intro rightResult hright t' ht'
  cases hright
  rw [List.mem_singleton.mp (List.mem_of_find?_eq_some ht')]
  exact .inr List.mem_cons_self

/--
The second join finds the key `3` in the hash table, although the first one has removed its rows.
-/
theorem carried_stockPlan
    : ∃ s result t carried joinCol built,
        stockPlan.foldlM (step fun _ => 1) (start stockInputs) = some s ∧ s.results[3]? = some result ∧
          result.getTable 1 = some t ∧ t.hashTable = some carried ∧ t.materializeColumn stockDb "n" = some joinCol ∧
          HashTable.build joinCol t.filter = some built ∧ carried.lookup 3 ≠ none ∧ built.lookup 3 = none := by
  have hrun : ((do
      let s ← stockPlan.foldlM (step fun _ => 1) (start stockInputs)
      let result ← s.results[3]?
      let t ← result.getTable 1
      let carried ← t.hashTable
      let joinCol ← t.materializeColumn stockDb "n"
      let built ← HashTable.build joinCol t.filter
      return (carried.lookup 3, built.lookup 3)) : Option (Option (List RecordID) × Option (List RecordID)))
      = some (some [⟨4, 1⟩, ⟨0, 0⟩], none) := by decide +kernel
  obtain ⟨s, hs, hrun⟩ := Option.bind_eq_some_iff.mp hrun
  obtain ⟨result, hresult, hrun⟩ := Option.bind_eq_some_iff.mp hrun
  obtain ⟨t, ht, hrun⟩ := Option.bind_eq_some_iff.mp hrun
  obtain ⟨carried, hcarried, hrun⟩ := Option.bind_eq_some_iff.mp hrun
  obtain ⟨joinCol, hjoinCol, hrun⟩ := Option.bind_eq_some_iff.mp hrun
  obtain ⟨built, hbuilt, hrun⟩ := Option.bind_eq_some_iff.mp hrun
  simp only [Option.pure_def, Option.some.injEq, Prod.mk.injEq] at hrun
  refine ⟨s, result, t, carried, joinCol, built, hs, hresult, ht, hcarried, hjoinCol, hbuilt, ?_, hrun.2⟩
  rw [hrun.1]
  exact Option.some_ne_none _

theorem not_takesBuilt
    : ¬Run.Throughout (step fun _ => 1) (fun _ => True) (TakesBuilt fun _ => 1) (start stockInputs)
        (stockPlan ++ [.hashJoin 1 3 ⟨2, "n", 1, "n"⟩]) := by
  intro h
  obtain ⟨s, result, t, carried, joinCol, built, hs, hresult, ht, hcarried, hjoinCol, hbuilt, hsome, hnone⟩ :=
    carried_stockPlan
  rw [stockPlan, List.foldlM_cons] at hs
  obtain ⟨s₁, hs₁, hs⟩ := Option.bind_eq_some_iff.mp hs
  rw [List.foldlM_cons] at hs
  obtain ⟨s₂, hs₂, hs⟩ := Option.bind_eq_some_iff.mp hs
  cases hs
  have hthird := ((h.2.2 s₁ hs₁).2.2 s hs₂).2.1
  obtain ⟨built', hbuilt', hsame⟩ := hthird result hresult t ht carried joinCol hcarried hjoinCol
  rw [hbuilt, Option.some.injEq] at hbuilt'
  rw [← hbuilt'] at hsame
  exact hsome ((hsame 3).2.mpr hnone)

end PlanState

end Hustle.Operators
